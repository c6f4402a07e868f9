import Legible.Proofs.Naming.Generation
import Legible.Proofs.Scope.Successive

namespace Legible

namespace Scope

theorem position?_renamedScope_of_ne {s : Scope} {i : Nat} {v : Variable} {name new : String}
    (hold : name ≠ v.name) (hnew : name ≠ new) :
    (renamedScope s i v new).position? name = s.position? name := by
  rw [renamedScope, position?, List.lookup_cons, beq_false_of_ne hnew]
  apply (lookup_filter_of_ne hnew).trans
  split
  · exact lookup_filter_of_ne hold
  · rfl

end Scope

namespace Naming

open Scope

structure Held (p : Path) (i : Nat) (v : Variable) (g : Generation) : Prop where
  kept : v.keepName = true
  here : ∃ s, g.root.at? p = some s ∧ s.position? v.name = some i ∧ s.declared[i]? = some v
  names : ∀ tag ∈ v.tags, g.names[tag]? = some v.name
  others : ∀ q c, g.root.at? q = some c → ∀ u ∈ c.declared, u.keepName = false →
    u.name ≠ v.name ∧ ∀ tag ∈ v.tags, tag ∉ u.tags

section

variable {p : Path} {i : Nat} {v : Variable} {g : Generation}

section

variable (h : Held p i v g) {q : Path} {j : Nat} {c : Scope} {u : Variable}
  (hc : g.root.at? q = some c) (hu : c.declared[j]? = some u) (hk : u.keepName = false)

include h hc hu hk

theorem Held.current_ne {o : Occurrence} (ho : o.tag ∈ v.tags) : g.names.current o ≠ u.name := by
  rw [Names.current_eq, h.names o.tag ho]
  exact (h.others q c hc u (List.mem_of_getElem? hu) hk).1.symm

theorem Held.here_rename :
    ∃ s, (g.root.modifyAt (fun s => renamedScope s j u (g.root.uniqueName q g.source.next.1)) q).at?
      p = some s ∧ s.position? v.name = some i ∧ s.declared[i]? = some v := by
  obtain ⟨s, hs, hposition, hi⟩ := h.here
  have hname := (h.others q c hc u (List.mem_of_getElem? hu) hk).1
  by_cases hqp : q = p
  · subst hqp
    obtain rfl := Option.some.inj (hc.symm.trans hs)
    refine ⟨_, (at?_modifyAt_self ..).trans (congrArg _ hc), ?_, ?_⟩
    · rw [position?_renamedScope_of_ne hname.symm, hposition]
      -- The new name is free in the scope, which has the name of the variable.
      intro he
      have hfree := position?_uniqueName hc (List.prefix_refl q) g.source.next.1
      rw [← he, hposition] at hfree
      cases hfree
    · refine (List.getElem?_set_ne ?_).trans hi
      rintro rfl
      obtain rfl := Option.some.inj (hu.symm.trans hi)
      rw [h.kept] at hk
      cases hk
  · have hsame := map_at?_modifyAt
      (f := fun s => renamedScope s j u (g.root.uniqueName q g.source.next.1)) (fun _ => rfl)
      (φ := fun s => (s.position? v.name, s.declared[i]?)) (fun _ _ => rfl) g.root (Ne.symm hqp)
    rw [hs, Option.map_some, hposition, hi] at hsame
    obtain ⟨s', hs', he⟩ := Option.map_eq_some_iff.mp hsame
    obtain ⟨hposition', hi'⟩ := Prod.mk.inj he
    exact ⟨s', hs', hposition', hi'⟩

end

theorem Held.nameVariable (h : Held p i v g) (q : Path) (j : Nat) :
    Held p i v (g.nameVariable q j) := by
  rcases nameVariable_cases g q j with he | ⟨c, u, -, hc, hu, hk, ha, -, -⟩
  · rw [he]
    exact h
  rw [nameVariable_eq hc hu hk ha]
  refine ⟨h.kept, h.here_rename hc hu hk, fun tag htag => ?_, fun q' c' hc' u' hu' hk' => ?_⟩
  · have hother := (h.others q c hc u (List.mem_of_getElem? hu) hk).2 tag htag
    rw [getElem?_renamedNames_of_current, if_neg hother, h.names tag htag]
    · exact fun r _ ho hn => absurd hn (h.current_ne hc hu hk (ho ▸ htag))
    · exact fun _ _ _ _ o _ ho hn => absurd hn (h.current_ne hc hu hk (ho ▸ htag))
  · rcases at?_modifyAt_cases
      (f := fun s => renamedScope s j u (g.root.uniqueName q g.source.next.1)) (fun _ => rfl) hc'
      with ⟨rfl, d, hd, rfl⟩ | ⟨-, e, cs, he, rfl⟩
    · rcases List.mem_or_eq_of_mem_set hu' with hu' | rfl
      · exact h.others q d hd u' hu' hk'
      · cases hk'
    · exact h.others q' e he u' hu' hk'

theorem Held.nameScope (h : Held p i v g) (q : Path) : Held p i v (g.nameScope q) := by
  rw [Generation.nameScope]
  split
  · exact h
  · split
    · exact h
    · exact List.foldlRecOn (motive := Held p i v) _ _ h fun _ hg j _ => hg.nameVariable q j

theorem Held.run (h : Held p i v g) (start : Path) : Held p i v (g.run start) := by
  rw [Generation.run]
  split
  · exact h
  · exact List.foldlRecOn (motive := Held p i v) _ _ h fun _ hg q _ => hg.nameScope q

end

end Naming

end Legible
