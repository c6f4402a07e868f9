import Legible.Proofs.Pattern.Fill
import Legible.Proofs.Pattern.Shape
import Mathlib.Data.List.TakeWhile

namespace Legible

namespace Pattern

mutual

def built (s : Assignment) : Pattern → Tree
  | .hole h => s h.name
  | .scalar a => .scalar a
  | .list ps => .list (builtItems s ps)
  | .object fs => .object 0 (builtFields s fs)
termination_by structural p => p

def builtItems (s : Assignment) : List Pattern → List Tree
  | [] => []
  | p :: ps => p.spliced (p.built s) ++ builtItems s ps
termination_by structural ps => ps

def builtFields (s : Assignment) : List (String × Pattern) → Fields
  | [] => []
  | (k, p) :: fs => (k, p.built s) :: builtFields s fs
termination_by structural fs => fs

end

mutual

def served (names lists : List String) : Pattern → Bool
  | .hole h => names.contains h.name && !lists.contains h.name
  | .scalar _ => true
  | .list ps => servedItems names lists ps
  | .object fs => servedFields names lists fs
termination_by structural p => p

def servedItems (names lists : List String) : List Pattern → Bool
  | [] => true
  | .hole h :: ps => names.contains h.name && servedItems names lists ps
  | p :: ps => p.served names lists && servedItems names lists ps
termination_by structural ps => ps

def servedFields (names lists : List String) : List (String × Pattern) → Bool
  | [] => true
  | (_, p) :: fs => p.served names lists && servedFields names lists fs
termination_by structural fs => fs

end

mutual

def runNames : Pattern → List String
  | .list ps => runNamesItems ps
  | .object fs => runNamesFields fs
  | _ => []
termination_by structural p => p

def runNamesItems : List Pattern → List String
  | [] => []
  | p :: ps =>
    (match p.run? with
    | some h => [h.name]
    | none => p.runNames) ++ runNamesItems ps
termination_by structural ps => ps

def runNamesFields : List (String × Pattern) → List String
  | [] => []
  | (_, p) :: fs => p.runNames ++ runNamesFields fs
termination_by structural fs => fs

end

mutual

def clash : Pattern → Pattern → Bool
  | .hole h, .object gs =>
    match (object gs).kind? with
    | some kind => !h.slot.takes kind
    | none => false
  | .hole h, .scalar a => !h.accepts (.scalar a)
  | .hole _, _ => false
  | .scalar a, .scalar b => !a.same b
  | .scalar _, .hole _ => false
  | .scalar _, _ => true
  | .list _, .scalar _ => true
  | .list _, .object _ => true
  | .list _, _ => false
  | .object fs, .object gs => clashFields fs gs
  | .object _, .hole _ => false
  | .object _, _ => true
termination_by structural p => p

def clashFields : List (String × Pattern) → List (String × Pattern) → Bool
  | [], _ => false
  | (k, p) :: fs, gs =>
    (!isIgnored k && (match gs.lookup k with
      | some q => p.clash q
      | none => false)) || clashFields fs gs
termination_by structural fs => fs

end

theorem lookup_builtFields (s : Assignment) (fs : List (String × Pattern)) (k : String) :
    (builtFields s fs).lookup k = (fs.lookup k).map (built s) := by
  induction fs with
  | nil => rfl
  | cons f fs ih =>
    obtain ⟨k', p⟩ := f
    rw [builtFields, List.lookup_cons, List.lookup_cons]
    cases k == k' with
    | true => rfl
    | false => exact ih

theorem get_built {fs : List (String × Pattern)} {k : String} {p : Pattern}
    (h : fs.lookup k = some p) (s : Assignment) : ((object fs).built s).get k = p.built s := by
  rw [built, Tree.get_object, lookup_builtFields, h]
  rfl

theorem kind?_built {p : Pattern} {kind : String} (h : p.kind? = some kind) (s : Assignment) :
    (p.built s).kind? = some kind := by
  cases p with
  | object fs =>
    rw [kind?] at h
    split at h
    · rename_i a hf
      rw [Tree.kind?, get_built hf, built]
      exact h
    · cases h
  | hole _ => cases h
  | scalar _ => cases h
  | list _ => cases h

theorem isNode_of_kind? {t : Tree} {kind : String} (h : t.kind? = some kind) : t.isNode = true := by
  rw [Tree.kind?, Tree.get] at h
  rw [Tree.isNode]
  cases hf : t.field? "type" with
  | none => rw [hf] at h; cases h
  | some v => rfl

/-! ### Runs -/

theorem runFrom_eq_self {h : Placeholder} {ts : List Tree} (hall : ∀ t ∈ ts, h.accepts t = true) :
    runFrom h [] ts = ts := by
  rw [runFrom, minimumLength, Nat.sub_zero, List.take_length]
  exact List.takeWhile_eq_self_iff.mpr hall

theorem fitsItems_run {p : Pattern} {h : Placeholder} (hp : p.run? = some h) {ts : List Tree} :
    fitsItems [p] ts = true ↔ (∀ t ∈ ts, h.accepts t = true) ∧ (ts = [] → h.optional = true) := by
  obtain ⟨run, rest, hrun, hts, hdrop, hacc⟩ := exists_run h ts (ts.length - minimumLength [])
  simp only [fitsItems, hp, runFrom, hrun, hdrop, Bool.and_eq_true, Bool.or_eq_true,
    Bool.not_eq_true', List.isEmpty_iff, List.isEmpty_eq_false_iff]
  constructor
  · rintro ⟨hsome, rfl⟩
    rw [List.append_nil] at hts
    subst hts
    exact ⟨hacc, fun he => hsome.resolve_left fun hne => hne he⟩
  · rintro ⟨hall, hsome⟩
    have hself : run = ts := hrun.symm.trans (runFrom_eq_self hall)
    rw [hself, List.self_eq_append_right] at hts
    rw [hself]
    refine ⟨?_, hts⟩
    by_cases he : ts = []
    · exact Or.inr (hsome he)
    · exact Or.inl he

theorem capturedItems_run {p : Pattern} {h : Placeholder} (hp : p.run? = some h) {ts : List Tree}
    (hf : (list [p]).fits (.list ts) = true) : capturedItems [p] ts = [(h.name, .list ts)] := by
  rw [fits] at hf
  simp only [capturedItems, hp, runFrom_eq_self ((fitsItems_run hp).mp hf).1]

/-! ### Success -/

theorem not_list_of_mem_capturedItems {ps : List Pattern} (ih : ∀ p ∈ ps, ∀ t, p.fits t = true →
      ∀ e ∈ p.captured t, (∀ ts, e.2 ≠ .list ts) ∨ e.1 ∈ p.runNames) {ts : List Tree}
    (h : fitsItems ps ts = true) :
    ∀ e ∈ capturedItems ps ts, (∀ us, e.2 ≠ .list us) ∨ e.1 ∈ runNamesItems ps := by
  induction ps generalizing ts with
  | nil => exact fun e he => absurd he List.not_mem_nil
  | cons p ps ihs =>
    rw [List.forall_mem_cons] at ih
    intro e he
    cases hp : p.run? with
    | some g =>
      simp only [fitsItems, capturedItems, runNamesItems, hp, Bool.and_eq_true, List.mem_cons,
        List.mem_append] at h he ⊢
      rcases he with rfl | he
      · exact Or.inr (Or.inl (Or.inl rfl))
      · exact (ihs ih.2 h.2 e he).imp_right Or.inr
    | none =>
      cases ts with
      | nil => simp [fitsItems, hp] at h
      | cons t ts =>
        simp only [fitsItems, capturedItems, runNamesItems, hp, Bool.and_eq_true, List.mem_append,
          List.headD_cons, List.tail_cons] at h he ⊢
        rcases he with he | he
        · exact (ih.1 t h.1 e he).imp_right Or.inl
        · exact (ihs ih.2 h.2 e he).imp_right Or.inr

theorem not_list_of_mem_captured {p : Pattern} {t : Tree} (h : p.fits t = true) :
    ∀ e ∈ p.captured t, (∀ ts, e.2 ≠ .list ts) ∨ e.1 ∈ p.runNames := by
  induction p generalizing t with
  | hole g =>
    intro e he
    rw [List.mem_singleton.mp he]
    exact Or.inl (not_list_of_accepts h)
  | scalar a => exact fun e he => absurd he List.not_mem_nil
  | list ps ih =>
    cases t with
    | list ts => exact not_list_of_mem_capturedItems (fun p hp t => ih p hp) h
    | scalar a => cases h
    | object tag gs => cases h
  | object fs ih =>
    rw [fits_object_iff] at h
    replace h := h.2
    rw [captured, runNames]
    induction fs with
    | nil => exact fun e he => absurd he List.not_mem_nil
    | cons f fs ihs =>
      obtain ⟨k, p⟩ := f
      rw [List.forall_mem_cons] at ih h
      intro e he
      rw [capturedFields, List.mem_append] at he
      rw [runNamesFields, List.mem_append]
      rcases he with he | he
      · split at he
        · cases he
        · rename_i hk
          exact (ih.1 (h.1 (Bool.of_not_eq_true hk)) e he).imp_right Or.inl
      · exact (ihs ih.2 h.2 e he).imp_right Or.inr

theorem not_list_of_fits {g : Placeholder} {t : Tree} (h : (hole g).fits t = true)
    (ts : List Tree) : t ≠ .list ts :=
  not_list_of_accepts h ts

theorem spliced_of_not_list {p : Pattern} {t : Tree} (h : ∀ ts, t ≠ .list ts) : p.spliced t = [t] := by
  unfold spliced
  split
  · exact absurd rfl (h _)
  · rfl

theorem fill_of_served {names lists : List String} {c : Captures}
    (hc : ∀ n ∈ names, ∃ t, c.lookup n = some t ∧ ((∀ ts, t ≠ .list ts) ∨ n ∈ lists))
    {p : Pattern} (hp : p.served names lists = true) :
    p.fill c = .ok (p.built c.assignment) := by
  have hhole : ∀ h : Placeholder, h.name ∈ names → (hole h).fill c = .ok (c.assignment h.name) := by
    intro h hn
    obtain ⟨t, ht, -⟩ := hc h.name hn
    exact fill_hole (by rw [ht]; rfl)
  induction p with
  | hole h =>
    rw [served, Bool.and_eq_true, List.contains_iff_mem] at hp
    exact hhole h hp.1
  | scalar a => rfl
  | list ps ih =>
    rw [served] at hp
    have hitems : fillItems c ps = .ok (builtItems c.assignment ps) := by
      induction ps with
      | nil => rfl
      | cons p ps ihs =>
        rw [List.forall_mem_cons] at ih
        rw [builtItems]
        cases p with
        | hole h =>
          rw [servedItems, Bool.and_eq_true, List.contains_iff_mem] at hp
          exact fillItems_cons (hhole h hp.1) (ihs ih.2 hp.2)
        | scalar _ | list _ | object _ =>
          simp only [servedItems, Bool.and_eq_true] at hp
          exact fillItems_cons (ih.1 hp.1) (ihs ih.2 hp.2)
    rw [fill, hitems]
    rfl
  | object fs ih =>
    rw [served] at hp
    have hfields : fillFields c fs = .ok (builtFields c.assignment fs) := by
      induction fs with
      | nil => rfl
      | cons f fs ihs =>
        obtain ⟨k, p⟩ := f
        rw [List.forall_mem_cons] at ih
        rw [servedFields, Bool.and_eq_true] at hp
        refine fillFields_cons (ih.1 hp.1) ?_ (ihs ih.2 hp.2)
        rintro h ts rfl hl
        have hh := hp.1
        rw [served, Bool.and_eq_true, List.contains_iff_mem, Bool.not_eq_true',
          ← Bool.not_eq_true, List.contains_iff_mem] at hh
        obtain ⟨t, ht, hnot⟩ := hc h.name hh.1
        refine hnot.elim (fun hnot => hnot ts ?_) hh.2
        rw [built, Captures.assignment, ht] at hl
        exact hl
    rw [fill, hfields]
    rfl

theorem lookup_captured {p : Pattern} (hn : p.names.Nodup) {t : Tree} {e : String × Tree}
    (he : e ∈ p.captured t) : (p.captured t).lookup e.1 = some e.2 := by
  rw [← names_captured p t] at hn
  exact Fields.lookup_of_mem hn he

theorem fill_captured {p q : Pattern} (hn : p.names.Nodup)
    (hq : q.served p.names p.runNames = true) {t : Tree} (h : p.fits t = true) :
    q.fill (p.captured t) = .ok (q.built (p.captured t).assignment) := by
  refine fill_of_served (fun n hm => ?_) hq
  rw [← names_captured p t] at hm
  obtain ⟨e, he, rfl⟩ := List.mem_map.mp hm
  exact ⟨e.2, lookup_captured hn he, not_list_of_mem_captured h e he⟩

/-! ### Clashes -/

theorem fits_of_clash {p q : Pattern} (h : p.clash q = true) (s : Assignment) :
    p.fits (q.built s) = false := by
  induction p generalizing q with
  | hole g =>
    cases q with
    | object gs =>
      rw [clash] at h
      split at h
      · rename_i kind hk
        have hb := kind?_built hk s
        have hnode := isNode_of_kind? hb
        rw [fits, Placeholder.accepts]
        split
        · rw [built]; rfl
        · rw [if_neg (by rw [built]; exact Bool.false_ne_true), hnode, Tree.kind, hb]
          simpa using h
      · cases h
    | scalar a => simpa [clash, fits, built] using h
    | hole _ => cases h
    | list _ => cases h
  | scalar a =>
    cases q with
    | scalar b => simpa [clash, fits, built, Tree.same] using h
    | hole _ => cases h
    | list _ => rfl
    | object _ => rfl
  | list ps ih =>
    cases q with
    | scalar _ => rfl
    | object _ => rfl
    | hole _ => cases h
    | list _ => cases h
  | object fs ih =>
    cases q with
    | hole _ => cases h
    | scalar _ => rfl
    | list _ => rfl
    | object gs =>
      rw [clash] at h
      rw [← Bool.not_eq_true, fits_object_iff]
      rintro ⟨-, hall⟩
      induction fs with
      | nil => cases h
      | cons f fs ihs =>
        obtain ⟨k, p⟩ := f
        rw [List.forall_mem_cons] at ih hall
        rw [clashFields, Bool.or_eq_true, Bool.and_eq_true, Bool.not_eq_true'] at h
        rcases h with ⟨hk, h⟩ | h
        · split at h
          · rename_i q hq
            have := hall.1 hk
            rw [get_built hq, ih.1 h] at this
            cases this
          · cases h
        · exact ihs ih.2 h hall.2

end Pattern

end Legible
