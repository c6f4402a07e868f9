import Legible.Naming.Source
import Legible.Proofs.Naming.Dictionary
import Legible.Proofs.Naming.Phonetic

namespace Legible.Naming

structure Plain (name : String) : Prop where
  unreserved : name ∉ reservedWords
  stem : Scope.nameStem name = name

theorem nameStem_eq {name : String}
    (h : ∀ c, name.toList.head? = some c → Text.isAnyDigit c = false) :
    Scope.nameStem name = name := by
  rw [Scope.nameStem]
  split
  · rename_i c cs hc
    rw [h c (by rw [hc]; rfl)]
    rfl
  · rfl

namespace Source

def Ready : Source → Prop
  | .dictionary d => d.Ready
  | .phonetic _ => True

def Spent : Source → String → Prop
  | .dictionary d => d.Spent
  | .phonetic p => fun name => name ∈ p.used

theorem ready_start {style : Style} {seed : Int} (h : 0 ≤ seed) : (start style seed).Ready := by
  cases style with
  | dictionary => exact Dictionary.ready_start h
  | phonetic => exact trivial

variable {s : Source}

theorem Ready.next (h : s.Ready) : s.next.2.Ready := by
  cases s with
  | dictionary d => exact h.advance.1.ready
  | phonetic p => exact trivial

theorem not_spent_next (h : s.Ready) : ¬ s.Spent s.next.1 := by
  cases s with
  | dictionary d => exact Dictionary.not_spent_advance h
  | phonetic p => exact (Phonetic.found_next lawful_twisterChooser p).fresh

theorem Spent.next (h : s.Ready) {name : String} (hs : s.Spent name) : s.next.2.Spent name := by
  cases s with
  | dictionary d => exact Dictionary.Spent.advance h hs
  | phonetic p =>
    have hu : (p.next twisterChooser).2.used = (p.next twisterChooser).1 :: p.used :=
      (Phonetic.found_next lawful_twisterChooser p).used
    show name ∈ (p.next twisterChooser).2.used
    rw [hu]
    exact List.mem_cons_of_mem _ hs

theorem spent_next (h : s.Ready) : s.next.2.Spent s.next.1 := by
  cases s with
  | dictionary d => exact Dictionary.spent_advance h
  | phonetic p =>
    have hu : (p.next twisterChooser).2.used = (p.next twisterChooser).1 :: p.used :=
      (Phonetic.found_next lawful_twisterChooser p).used
    show (p.next twisterChooser).1 ∈ (p.next twisterChooser).2.used
    rw [hu]
    exact List.mem_cons_self

theorem plain_next (s : Source) : Plain s.next.1 := by
  cases s with
  | dictionary d =>
    have hhead := d.advance.head_name
    refine ⟨fun hm => ?_, nameStem_eq fun c hc => ?_⟩
    · have hwords : ∀ w ∈ reservedWords, w.toList.head? ≠ some '_' := by decide
      exact hwords _ hm hhead
    · obtain rfl := Option.some.inj (hhead.symm.trans hc)
      decide
  | phonetic p =>
    obtain ⟨-, hr, -, ⟨n, hs⟩, -⟩ := Phonetic.found_next lawful_twisterChooser p
    exact ⟨hr, nameStem_eq fun c hc => hs.head hc⟩

theorem take_succ (n : Nat) (s : Source) :
    s.take (n + 1) = (s.next.1 :: (s.next.2.take n).1, (s.next.2.take n).2) := rfl

theorem take_concat (n : Nat) (s : Source) :
    s.take (n + 1) = ((s.take n).1 ++ [(s.take n).2.next.1], (s.take n).2.next.2) := by
  induction n generalizing s with
  | zero => rfl
  | succ n ih => rw [take_succ, ih, take_succ, List.cons_append]

theorem length_take (n : Nat) (s : Source) : (s.take n).1.length = n := by
  induction n generalizing s with
  | zero => rfl
  | succ n ih => rw [take_succ, List.length_cons, ih]

theorem plain_of_mem_take {n : Nat} {name : String} (h : name ∈ (s.take n).1) : Plain name := by
  induction n generalizing s with
  | zero => cases h
  | succ n ih =>
    rw [take_succ] at h
    rcases List.mem_cons.mp h with rfl | h
    · exact s.plain_next
    · exact ih h

theorem not_spent_of_mem_take {n : Nat} (hs : s.Ready) {name : String} (h : name ∈ (s.take n).1) :
    ¬ s.Spent name := by
  induction n generalizing s with
  | zero => cases h
  | succ n ih =>
    rw [take_succ] at h
    rcases List.mem_cons.mp h with rfl | h
    · exact not_spent_next hs
    · exact fun hm => ih hs.next h (hm.next hs)

theorem nodup_take (hs : s.Ready) (n : Nat) : (s.take n).1.Nodup := by
  induction n generalizing s with
  | zero => exact List.nodup_nil
  | succ n ih =>
    rw [take_succ]
    exact List.nodup_cons.mpr
      ⟨fun hm => not_spent_of_mem_take hs.next hm (spent_next hs), ih hs.next⟩

end Source

end Legible.Naming
