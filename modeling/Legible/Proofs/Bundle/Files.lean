import Legible.Proofs.Bundle.Splitting
import Legible.Proofs.FilePath.Output
import Legible.Script

namespace Legible.Bundle

open FilePath (output place SameFile)

theorem place_stripped (target : String) {name stripped : String} (h : Stripped name stripped) :
    place target stripped = place target name := by
  obtain ⟨cs, n, hname, -, hstripped⟩ := h
  split at hstripped
  · rename_i hcs
    subst hcs
    have hslashes : place target name = place target "" :=
      FilePath.place_append_slashes target hname
    have hslash : place target stripped = place target "" :=
      FilePath.place_append_slashes (n := 1) target hstripped
    rw [hslashes, hslash]
  · rw [FilePath.place_append_slashes target (n := n) (hname.trans (by rw [hstripped]))]

/-- Every module has a file of its own exactly if no two names lead to one place. -/
theorem files_distinct_iff {parse : Parser} {t : Tree} {target : String}
    (h : target.toList.head? = some '/') (hsplit : (split parse t).failure = none)
    (hfiles : ∀ m ∈ (split parse t).modules, ∃ file, output target m.name = .ok file) :
    ∃ l r, Layout.ofTree t = .ok l ∧ resolve l = .ok r ∧
      ((∀ m ∈ (split parse t).modules, ∀ m' ∈ (split parse t).modules,
          output target m.name = output target m'.name → m = m') ↔
        ∀ id ∈ l.ids, ∀ id' ∈ l.ids, ∀ name name', r.names.get? id = some name →
          r.names.get? id' = some name' → SameFile (place target name) (place target name') →
            Key.of id = Key.of id') := by
  obtain ⟨l, r, hl, hr, hcomplete, -⟩ := exists_complete hsplit
  refine ⟨l, r, hl, hr, ?_⟩
  have hsame : ∀ m ∈ (split parse t).modules, ∀ m' ∈ (split parse t).modules, ∀ name name',
      r.names.get? m.id = some name → r.names.get? m'.id = some name' →
        (output target m.name = output target m'.name ↔
          SameFile (place target name) (place target name')) := by
    intro m hm m' hm' name name' hname hname'
    obtain ⟨-, given, hgiven, hstripped⟩ := hcomplete.names m hm
    obtain ⟨-, given', hgiven', hstripped'⟩ := hcomplete.names m' hm'
    obtain rfl := Option.some.inj (hgiven.symm.trans hname)
    obtain rfl := Option.some.inj (hgiven'.symm.trans hname')
    obtain ⟨file, hfile⟩ := hfiles m hm
    obtain ⟨file', hfile'⟩ := hfiles m' hm'
    rw [← place_stripped target hstripped, ← place_stripped target hstripped',
      ← FilePath.output_eq_iff h hfile hfile', hfile, hfile', Except.ok.injEq]
  constructor
  · intro hinj id hid id' hid' name name' hname hname' hmeet
    obtain ⟨m, hm, hkey⟩ := hcomplete.exists_module hid
    obtain ⟨m', hm', hkey'⟩ := hcomplete.exists_module hid'
    rw [← Table.get?_congr hkey] at hname
    rw [← Table.get?_congr hkey'] at hname'
    have heq := hinj m hm m' hm' ((hsame m hm m' hm' _ _ hname hname').mpr hmeet)
    rw [← hkey, ← hkey', heq]
  · intro hapart m hm m' hm' heq
    obtain ⟨-, name, hname, -⟩ := hcomplete.names m hm
    obtain ⟨-, name', hname', -⟩ := hcomplete.names m' hm'
    obtain ⟨id, hmem, hkey⟩ := hcomplete.exists_id hm
    obtain ⟨id', hmem', hkey'⟩ := hcomplete.exists_id hm'
    have hmeet := (hsame m hm m' hm' _ _ hname hname').mp heq
    rw [← Table.get?_congr hkey] at hname
    rw [← Table.get?_congr hkey'] at hname'
    have hsameKey := hapart id hmem id' hmem' _ _ hname hname' hmeet
    exact List.inj_on_of_nodup_map hcomplete.nodup hm hm' (hkey.symm.trans (hsameKey.trans hkey'))

def DistinctIds (t : Tree) : Prop :=
  ∃ format table rows, tableOf? t = some (format, table) ∧ pairsOf table = .ok rows ∧
    (rows.map fun row => spelled row.1).Nodup

def versionedBundle : Tree :=
  let one := Form.expressionStatement (Form.callExpression (Form.identifier "one") [])
  let two := Form.expressionStatement (Form.callExpression (Form.identifier "two") [])
  bundle [.number (.ofInt 1)]
    [(.number (.ofInt 1), [], [("a", .number (.ofInt 2))]),
      (.number (.ofInt 2), [one], [("a", .number (.ofInt 3))]), (.number (.ofInt 3), [two], [])]

theorem modules_versionedBundle : (split Script.parse versionedBundle).failure = none ∧
    (split Script.parse versionedBundle).modules.map (fun m => (m.name, Key.of m.id)) =
      [("/main", Key.of (.number (.ofInt 1))), ("/a", Key.of (.number (.ofInt 2))),
        ("/a", Key.of (.number (.ofInt 3)))] := by
  decide +kernel

theorem exists_file_versionedBundle :
    ∀ m ∈ (split Script.parse versionedBundle).modules, ∃ file, output "/out" m.name = .ok file := by
  have hnames := congrArg (List.map (·.1)) modules_versionedBundle.2
  rw [List.map_map] at hnames
  have hall : ∀ name ∈ (split Script.parse versionedBundle).modules.map (·.name),
      ∃ file, output "/out" name = .ok file := by
    rw [show (split Script.parse versionedBundle).modules.map (·.name) =
      ["/main", "/a", "/a"] from hnames]
    simp only [List.forall_mem_cons]
    exact ⟨⟨"/out/main.js", rfl⟩, ⟨"/out/a.js", rfl⟩, ⟨"/out/a.js", rfl⟩, List.forall_mem_nil _⟩
  exact fun m hm => hall _ (List.mem_map_of_mem hm)

theorem files_distinct_iff_versioned : ("/out".toList.head? = some '/' ∧
    (split Script.parse versionedBundle).failure = none ∧
    ∀ m ∈ (split Script.parse versionedBundle).modules, ∃ file, output "/out" m.name = .ok file) ∧
    ∃ l r, Layout.ofTree versionedBundle = .ok l ∧ resolve l = .ok r ∧
      ((∀ m ∈ (split Script.parse versionedBundle).modules,
          ∀ m' ∈ (split Script.parse versionedBundle).modules,
          output "/out" m.name = output "/out" m'.name → m = m') ↔
        ∀ id ∈ l.ids, ∀ id' ∈ l.ids, ∀ name name', r.names.get? id = some name →
          r.names.get? id' = some name' → SameFile (place "/out" name) (place "/out" name') →
            Key.of id = Key.of id') :=
  have h : "/out".toList.head? = some '/' := rfl
  ⟨⟨h, modules_versionedBundle.1, exists_file_versionedBundle⟩,
    files_distinct_iff h modules_versionedBundle.1 exists_file_versionedBundle⟩

theorem files_overwritten : ¬ ∀ (t : Tree) (target : String), target.toList.head? = some '/' →
    DistinctIds t → (split Script.parse t).failure = none →
    (∀ m ∈ (split Script.parse t).modules, ∃ file, output target m.name = .ok file) →
    ∀ m ∈ (split Script.parse t).modules, ∀ m' ∈ (split Script.parse t).modules,
      output target m.name = output target m'.name → m = m' := by
  intro h
  have hids : DistinctIds versionedBundle := by
    refine ⟨.browserify, _, _, rfl, rfl, ?_⟩
    decide +kernel
  have hinj := h versionedBundle "/out" rfl hids modules_versionedBundle.1
    exists_file_versionedBundle
  have hmodules := modules_versionedBundle.2
  generalize (split Script.parse versionedBundle).modules = ms at hinj hmodules
  obtain ⟨first, rest, rfl, -, hrest⟩ := List.map_eq_cons_iff.mp hmodules
  obtain ⟨second, rest, rfl, hsecond, hrest⟩ := List.map_eq_cons_iff.mp hrest
  obtain ⟨third, rest, rfl, hthird, -⟩ := List.map_eq_cons_iff.mp hrest
  obtain ⟨hname, hkey⟩ := Prod.mk.inj hsecond
  obtain ⟨hname', hkey'⟩ := Prod.mk.inj hthird
  have heq := hinj second (by simp) third (by simp) (by rw [hname, hname'])
  rw [heq, hkey'] at hkey
  exact absurd hkey (by decide)

end Legible.Bundle
